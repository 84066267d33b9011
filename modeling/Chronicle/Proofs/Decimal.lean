import Chronicle.Proofs.Datum.Word
import Mathlib.Algebra.Field.Rat
import Mathlib.Algebra.Order.Ring.Rat
import Mathlib.Tactic.Positivity
import Mathlib.Tactic.Ring

/-!
# Decimals are read back

The text of a decimal is read as a decimal of the same sign and the same size, be it written with
an exponent or without.  So two decimals have one text if and only if they are the same number.
-/

namespace Chronicle.Decimal

open Text.Numeral
open Datum (IsExponent point unsignedOfWord?_decimal)

/-- The number without its sign. -/
def size (x : Decimal) : ℚ := x.digits * 10 ^ x.exponent

/-- The same number; zero and its negative are two. -/
def Same (x y : Decimal) : Prop := x.negative = y.negative ∧ x.size = y.size

/-! ### A point between digits -/

def orZero (cs : List Char) : List Char := if cs.isEmpty then ['0'] else cs

def wholePart (ds : List Char) (place : Int) : List Char :=
  ds.take place.toNat ++ List.replicate (place.toNat - ds.length) '0'

def fractionPart (ds : List Char) (place : Int) : List Char :=
  List.replicate (-place).toNat '0' ++ ds.drop place.toNat

theorem orZero_ne_nil (cs : List Char) : orZero cs ≠ [] := by
  cases cs <;> simp [orZero]

theorem pointed_eq (ds : List Char) (place : Int) :
    pointed ds place = orZero (wholePart ds place) ++ point (orZero (fractionPart ds place)) := by
  rw [point, if_neg (orZero_ne_nil _)]
  rfl

/-- The number that digits with a point between them stand for. -/
def worth (whole fraction : List Char) : ℚ :=
  Nat.ofDigitChars 10 (whole ++ fraction) 0 * 10 ^ (-(fraction.length : Int))

theorem worth_orZero_whole (whole fraction : List Char) :
    worth (orZero whole) fraction = worth whole fraction := by
  cases whole with
  | nil => simp [orZero, worth, Nat.ofDigitChars_cons]
  | cons c cs => rfl

theorem worth_orZero_fraction (whole fraction : List Char) :
    worth whole (orZero fraction) = worth whole fraction := by
  cases fraction with
  | nil =>
    simp only [orZero, worth, Nat.ofDigitChars_append, List.isEmpty_nil, if_true, List.append_nil]
    simp [Nat.ofDigitChars_cons]
    ring
  | cons c cs => rfl

/-- The point stands within the digits, behind more zeros, or in front of all of them. -/
theorem worth_parts (ds : List Char) (place : Int) :
    worth (wholePart ds place) (fractionPart ds place) =
      Nat.ofDigitChars 10 ds 0 * 10 ^ (place - ds.length) := by
  unfold worth wholePart fractionPart
  obtain ⟨n, rfl⟩ | ⟨m, rfl⟩ : (∃ n : Nat, place = n) ∨ ∃ m : Nat, place = -(m : Int) := by
    rcases Int.natAbs_eq place with h | h
    · exact .inl ⟨_, h⟩
    · exact .inr ⟨_, h⟩
  · obtain hn | hn := Nat.le_total n ds.length
    · rw [show (n : Int) - ds.length = -((ds.length - n : Nat) : Int) by omega]
      simp [Nat.sub_eq_zero_of_le hn]
    · rw [show (n : Int) - ds.length = ((n - ds.length : Nat) : Int) by omega]
      simp [List.take_of_length_le hn, List.drop_of_length_le hn, Nat.ofDigitChars_append,
        Nat.ofDigitChars_replicate_zero, mul_comm]
  · rw [show -(m : Int) - ds.length = -((m + ds.length : Nat) : Int) by push_cast; ring]
    simp [Nat.ofDigitChars_append, Nat.ofDigitChars_replicate_zero]

variable {ds : List Char}

theorem isDigit_orZero (hds : ∀ c ∈ ds, c.isDigit) : ∀ c ∈ orZero ds, c.isDigit := by
  cases ds with
  | nil => simp [orZero]
  | cons c cs => exact hds

theorem isSome_natural? (hds : ∀ c ∈ ds, c.isDigit) (hhead : ds.head? ≠ some '0') :
    (natural? (orZero ds)).isSome := by
  cases ds with
  | nil => rfl
  | cons c cs =>
    have hc : c ≠ '0' := fun h => hhead (by rw [h]; rfl)
    have hread := digits?_of_isDigit hds (List.cons_ne_nil c cs)
    simp [orZero, natural?, hc, hread]

theorem isDigit_wholePart (hds : ∀ c ∈ ds, c.isDigit) (place : Int) :
    ∀ c ∈ wholePart ds place, c.isDigit :=
  isDigit_of_mem_append (fun c hc => hds c (List.mem_of_mem_take hc)) (isDigit_of_mem_zeros _)

theorem isDigit_fractionPart (hds : ∀ c ∈ ds, c.isDigit) (place : Int) :
    ∀ c ∈ fractionPart ds place, c.isDigit :=
  isDigit_of_mem_append (isDigit_of_mem_zeros _) fun c hc => hds c (List.mem_of_mem_drop hc)

theorem head?_wholePart {c : Char} (hc : c ≠ '0') (cs : List Char) (place : Int) :
    (wholePart (c :: cs) place).head? ≠ some '0' := by
  cases h : place.toNat with
  | zero => simp [wholePart, h]
  | succ n => simpa [wholePart, h] using hc

theorem exists_pointed (hds : ∀ c ∈ ds, c.isDigit) (place : Int) :
    ∃ c cs, pointed ds place = c :: cs ∧ c.isDigit := by
  have hdigits := isDigit_orZero (isDigit_wholePart hds place)
  obtain ⟨c, cs, h⟩ := List.exists_cons_of_ne_nil (orZero_ne_nil (wholePart ds place))
  rw [pointed_eq, h]
  exact ⟨c, _, rfl, hdigits c (h ▸ List.mem_cons_self)⟩

theorem unsignedOfWord?_pointed (negative : Bool) (place : Int) (hds : ∀ c ∈ ds, c.isDigit)
    (hhead : (wholePart ds place).head? ≠ some '0') : ∃ y : Decimal,
      Datum.unsignedOfWord? negative (pointed ds place) = some (.decimal y) ∧
        y.negative = negative ∧ y.size = Nat.ofDigitChars 10 ds 0 * 10 ^ (place - ds.length) := by
  have hwhole := isDigit_wholePart hds place
  have hfraction := isDigit_orZero (isDigit_fractionPart hds place)
  have hread := unsignedOfWord?_decimal negative (isDigit_orZero hwhole)
    (isSome_natural? hwhole hhead) hfraction .absent (.inl (orZero_ne_nil _))
  rw [List.append_nil, ← pointed_eq, zero_sub] at hread
  refine ⟨_, hread, rfl, ?_⟩
  rw [← worth_parts ds place, ← worth_orZero_whole, ← worth_orZero_fraction]
  rfl

/-! ### An exponent -/

/-- The exponent with at least two places. -/
def exponentPart (exponent : Int) : List Char :=
  List.replicate (2 - (Nat.toDigits 10 exponent.natAbs).length) '0' ++
    Nat.toDigits 10 exponent.natAbs

theorem isDigit_exponentPart (exponent : Int) : ∀ c ∈ exponentPart exponent, c.isDigit :=
  isDigit_of_mem_append (isDigit_of_mem_zeros _) (isDigit_of_mem_toDigits _)

theorem isExponent_part (exponent : Int) :
    IsExponent ('e' :: (if exponent < 0 then '-' else '+') :: exponentPart exponent) exponent := by
  have hdigits := isDigit_exponentPart exponent
  have hne : exponentPart exponent ≠ [] := by simp [exponentPart]
  have hvalue : Nat.ofDigitChars 10 (exponentPart exponent) 0 = exponent.natAbs := by
    simp [exponentPart, Nat.ofDigitChars_append, Nat.ofDigitChars_replicate_zero]
  split_ifs with hneg
  · have hread := IsExponent.minus hdigits hne
    rwa [hvalue, show -(exponent.natAbs : Int) = exponent by omega] at hread
  · have hread := IsExponent.plus hdigits hne
    rwa [hvalue, show (exponent.natAbs : Int) = exponent by omega] at hread

theorem scientific_eq (d : Char) (ds : List Char) (exponent : Int) :
    scientific (d :: ds) exponent =
      [d] ++ point ds ++ 'e' :: (if exponent < 0 then '-' else '+') :: exponentPart exponent := by
  cases ds <;> simp [scientific, point, exponentPart]

theorem unsignedOfWord?_scientific (negative : Bool) (exponent : Int) (hds : ∀ c ∈ ds, c.isDigit)
    (hne : ds ≠ []) : ∃ y : Decimal,
      Datum.unsignedOfWord? negative (scientific ds exponent) = some (.decimal y) ∧
        y.negative = negative ∧
        y.size = Nat.ofDigitChars 10 ds 0 * 10 ^ (exponent + 1 - ds.length) := by
  obtain ⟨d, ds, rfl⟩ := List.exists_cons_of_ne_nil hne
  have hd : ∀ c ∈ [d], c.isDigit := fun c hc => hds c (List.mem_singleton.1 hc ▸ List.mem_cons_self)
  have hnatural : (natural? [d]).isSome := by
    rw [natural?, digits?_of_isDigit hd (List.cons_ne_nil d [])]
    · rfl
    · simp
  have hread := unsignedOfWord?_decimal negative hd hnatural
    (fun c hc => hds c (List.mem_cons_of_mem d hc)) (isExponent_part exponent)
    (.inr (List.cons_ne_nil _ _))
  rw [← scientific_eq] at hread
  have hplaces : exponent + 1 - ((d :: ds).length : Int) = exponent - ds.length := by
    rw [List.length_cons]
    push_cast
    ring
  refine ⟨_, hread, rfl, ?_⟩
  rw [hplaces]
  rfl

/-! ### The digits that are written -/

theorem exists_significant (x : Decimal) :
    ∃ j, Nat.toDigits 10 x.digits = x.significant ++ List.replicate j '0' := by
  have hsplit := congrArg List.reverse
    (List.takeWhile_append_dropWhile (p := (· = '0')) (l := (Nat.toDigits 10 x.digits).reverse))
  rw [List.reverse_append, List.reverse_reverse] at hsplit
  refine ⟨_, hsplit.symm.trans (congrArg _ (List.eq_replicate_of_mem fun c hc => ?_))⟩
  rw [List.mem_reverse] at hc
  simpa using List.mem_takeWhile_imp hc

theorem isDigit_significant (x : Decimal) : ∀ c ∈ x.significant, c.isDigit := by
  obtain ⟨j, hj⟩ := x.exists_significant
  exact fun c hc => isDigit_of_mem_toDigits x.digits c (hj ▸ List.mem_append_left _ hc)

theorem exists_head_significant {x : Decimal} (hx : 0 < x.digits) :
    ∃ c cs, x.significant = c :: cs ∧ c ≠ '0' := by
  obtain ⟨j, hj⟩ := x.exists_significant
  have hhead := head?_toDigits hx
  cases h : x.significant with
  | nil =>
    rw [hj, h] at hhead
    cases j with
    | zero => exact absurd (by rw [hj, h]; rfl) (Nat.toDigits_ne_nil (n := x.digits) (b := 10))
    | succ j => exact absurd rfl hhead
  | cons c cs =>
    rw [hj, h] at hhead
    exact ⟨c, cs, rfl, fun hc => hhead (by rw [hc]; rfl)⟩

/-- How many digits stand before the point. -/
def place (x : Decimal) : Int := x.exponent + (Nat.toDigits 10 x.digits).length

theorem size_eq_significant (x : Decimal) :
    x.size = Nat.ofDigitChars 10 x.significant 0 * 10 ^ (x.place - x.significant.length) := by
  obtain ⟨j, hj⟩ := x.exists_significant
  have hdigits : x.digits = 10 ^ j * Nat.ofDigitChars 10 x.significant 0 := by
    rw [← Nat.ofDigitChars_ten_toDigits (n := x.digits), hj, Nat.ofDigitChars_append,
      Nat.ofDigitChars_replicate_zero]
  have hplace : x.place - x.significant.length = x.exponent + j := by
    rw [place, hj, List.length_append, List.length_replicate]
    push_cast
    ring
  rw [size, hplace, zpow_add₀ (by norm_num), zpow_natCast, hdigits]
  push_cast
  ring

/-! ### The text -/

/-- The text without the sign. -/
def magnitude (x : Decimal) : List Char :=
  if x.isZero then pointed x.significant 0
  else if -4 < x.place ∧ x.place ≤ 16 then pointed x.significant x.place
  else scientific x.significant (x.place - 1)

theorem text_eq (x : Decimal) :
    x.text = String.ofList (if x.negative then '-' :: x.magnitude else x.magnitude) := rfl

theorem significant_of_isZero {x : Decimal} (hx : x.isZero) : x.significant = [] := by
  rw [significant, of_decide_eq_true hx]
  rfl

theorem digits_pos {x : Decimal} (hx : ¬x.isZero) : 0 < x.digits :=
  Nat.pos_of_ne_zero fun h => hx (decide_eq_true h)

theorem unsignedOfWord?_magnitude (negative : Bool) (x : Decimal) : ∃ y : Decimal,
    Datum.unsignedOfWord? negative x.magnitude = some (.decimal y) ∧
      y.negative = negative ∧ y.size = x.size := by
  have hds := x.isDigit_significant
  rw [size_eq_significant, magnitude]
  split_ifs with hzero hplain
  · have hread := unsignedOfWord?_pointed negative 0 hds
      (by rw [significant_of_isZero hzero]; decide)
    simpa [significant_of_isZero hzero] using hread
  · apply unsignedOfWord?_pointed negative x.place hds
    obtain ⟨c, cs, hsignificant, hc⟩ := exists_head_significant (digits_pos hzero)
    rw [hsignificant]
    exact head?_wholePart hc cs x.place
  · obtain ⟨c, cs, hsignificant, -⟩ := exists_head_significant (digits_pos hzero)
    have hread := unsignedOfWord?_scientific negative (x.place - 1) hds (by simp [hsignificant])
    rwa [sub_add_cancel] at hread

theorem exists_magnitude (x : Decimal) : ∃ c cs, x.magnitude = c :: cs ∧ c.isDigit := by
  have hds := x.isDigit_significant
  rw [magnitude]
  split_ifs with hzero hplain
  · exact exists_pointed hds 0
  · exact exists_pointed hds x.place
  · obtain ⟨c, cs, hsignificant, -⟩ := exists_head_significant (digits_pos hzero)
    rw [hsignificant] at hds ⊢
    rw [scientific_eq]
    exact ⟨c, _, rfl, hds c List.mem_cons_self⟩

theorem toList_text_ne_nil (x : Decimal) : x.text.toList ≠ [] := by
  obtain ⟨c, cs, hmagnitude, -⟩ := x.exists_magnitude
  rw [text_eq, String.toList_ofList]
  split_ifs <;> simp [hmagnitude]

theorem numeric_of_mem_pointed (hds : ∀ c ∈ ds, c.isDigit) (place : Int) :
    ∀ c ∈ pointed ds place, c.isDigit ∨ c ∈ ['-', '+', '.', 'e'] := by
  intro c hc
  rw [pointed_eq, List.mem_append] at hc
  rcases hc with h | h
  · exact .inl (isDigit_orZero (isDigit_wholePart hds place) c h)
  · rcases Datum.point_cases (isDigit_orZero (isDigit_fractionPart hds place)) c h with rfl | h
    · exact .inr (by decide)
    · exact .inl h

theorem numeric_of_mem_scientific (hds : ∀ c ∈ ds, c.isDigit) (hne : ds ≠ []) (exponent : Int) :
    ∀ c ∈ scientific ds exponent, c.isDigit ∨ c ∈ ['-', '+', '.', 'e'] := by
  intro c hc
  obtain ⟨d, ds, rfl⟩ := List.exists_cons_of_ne_nil hne
  rw [scientific_eq, List.mem_append, List.mem_append, List.mem_singleton, List.mem_cons,
    List.mem_cons] at hc
  rcases hc with (rfl | h) | rfl | rfl | h
  · exact .inl (hds _ List.mem_cons_self)
  · rcases Datum.point_cases (fun d' hd' => hds d' (List.mem_cons_of_mem d hd')) c h with rfl | h
    · exact .inr (by decide)
    · exact .inl h
  · exact .inr (by decide)
  · right
    split_ifs <;> decide
  · exact .inl (isDigit_exponentPart exponent c h)

theorem numeric_of_mem_text (x : Decimal) :
    ∀ c ∈ x.text.toList, c.isDigit ∨ c ∈ ['-', '+', '.', 'e'] := by
  have hds := x.isDigit_significant
  have hmagnitude : ∀ c ∈ x.magnitude, c.isDigit ∨ c ∈ ['-', '+', '.', 'e'] := by
    rw [magnitude]
    split_ifs with hzero hplain
    · exact numeric_of_mem_pointed hds 0
    · exact numeric_of_mem_pointed hds x.place
    · obtain ⟨c, cs, hsignificant, -⟩ := exists_head_significant (digits_pos hzero)
      exact numeric_of_mem_scientific hds (by simp [hsignificant]) (x.place - 1)
  intro c hc
  rw [text_eq, String.toList_ofList] at hc
  split_ifs at hc with hx
  · rcases List.mem_cons.1 hc with rfl | h
    · exact .inr (by decide)
    · exact hmagnitude c h
  · exact hmagnitude c hc

theorem ofWord?_text (x : Decimal) :
    ∃ y : Decimal, Datum.ofWord? x.text.toList = some (.decimal y) ∧ x.Same y := by
  obtain ⟨y, hread, hnegative, hsize⟩ := unsignedOfWord?_magnitude x.negative x
  refine ⟨y, ?_, hnegative.symm, hsize.symm⟩
  rw [text_eq, String.toList_ofList]
  split_ifs with hx
  · rwa [Datum.ofWord?_minus, ← hx]
  · obtain ⟨c, cs, hmagnitude, hc⟩ := x.exists_magnitude
    rw [hmagnitude, Datum.ofWord?_digit hc, ← hmagnitude]
    rwa [Bool.eq_false_of_not_eq_true hx] at hread

/-! ### One size, one text -/

theorem isZero_iff_size (x : Decimal) : x.isZero ↔ x.size = 0 := by
  have hpow : (10 : ℚ) ^ x.exponent ≠ 0 := zpow_ne_zero _ (by norm_num)
  rw [isZero, decide_eq_true_eq, size, mul_eq_zero, or_iff_left hpow, Nat.cast_eq_zero]

theorem toDigits_mul_pow {n : Nat} (hn : 0 < n) (j : Nat) :
    Nat.toDigits 10 (n * 10 ^ j) = Nat.toDigits 10 n ++ List.replicate j '0' := by
  induction j with
  | zero => simp
  | succ j ih =>
    have hpos : 0 < n * 10 ^ j := by positivity
    rw [pow_succ, ← mul_assoc, mul_comm _ 10, ← Nat.add_zero (10 * _),
      ← Nat.toDigits_append_toDigits (by decide) hpos (by decide), ih, Nat.toDigits_zero,
      List.replicate_succ', List.append_assoc]

/-- Of two decimals of one size, the one with the lower exponent has zeros for the difference. -/
theorem digits_of_size_eq {x y : Decimal} (hsize : x.size = y.size)
    (hle : x.exponent ≤ y.exponent) :
    x.digits = y.digits * 10 ^ (y.exponent - x.exponent).toNat := by
  have hpow : (10 : ℚ) ^ x.exponent ≠ 0 := zpow_ne_zero _ (by norm_num)
  have hsplit : y.exponent = ((y.exponent - x.exponent).toNat : Int) + x.exponent := by omega
  rw [size, size, hsplit, zpow_add₀ (by norm_num), zpow_natCast, ← mul_assoc] at hsize
  exact_mod_cast mul_right_cancel₀ hpow hsize

theorem significant_place_of_le {x y : Decimal} (hy : 0 < y.digits) (hsize : x.size = y.size)
    (hle : x.exponent ≤ y.exponent) : x.significant = y.significant ∧ x.place = y.place := by
  have hdigits : Nat.toDigits 10 x.digits =
      Nat.toDigits 10 y.digits ++ List.replicate (y.exponent - x.exponent).toNat '0' := by
    rw [digits_of_size_eq hsize hle, toDigits_mul_pow hy]
  constructor
  · rw [significant, significant, hdigits, List.reverse_append, List.reverse_replicate,
      List.dropWhile_append_of_pos fun c hc => by simp [List.eq_of_mem_replicate hc]]
  · rw [place, place, hdigits, List.length_append, List.length_replicate]
    omega

/-- The text depends on the size alone: trailing zeros are dropped, and the place of the point does
not change with them. -/
theorem magnitude_congr {x y : Decimal} (hsize : x.size = y.size) : x.magnitude = y.magnitude := by
  have hzero : x.isZero = y.isZero := by
    rw [Bool.eq_iff_iff, isZero_iff_size, isZero_iff_size, hsize]
  by_cases hx : x.isZero
  · have hy : y.isZero := hzero ▸ hx
    rw [magnitude, magnitude, if_pos hx, if_pos hy, significant_of_isZero hx,
      significant_of_isZero hy]
  · have hy : ¬y.isZero := hzero ▸ hx
    have hparts : x.significant = y.significant ∧ x.place = y.place := by
      rcases Int.le_total x.exponent y.exponent with hle | hle
      · exact significant_place_of_le (digits_pos hy) hsize hle
      · exact (significant_place_of_le (digits_pos hx) hsize.symm hle).imp Eq.symm Eq.symm
    rw [magnitude, magnitude, if_neg hx, if_neg hy, hparts.1, hparts.2]

theorem text_congr {x y : Decimal} (h : x.Same y) : x.text = y.text := by
  rw [text_eq, text_eq, h.1, magnitude_congr h.2]

theorem text_eq_iff (x y : Decimal) : x.text = y.text ↔ x.Same y := by
  refine ⟨fun h => ?_, text_congr⟩
  obtain ⟨z, hz, hx⟩ := ofWord?_text x
  obtain ⟨z', hz', hy⟩ := ofWord?_text y
  rw [h, hz'] at hz
  obtain rfl : z' = z := by simpa using hz
  exact ⟨hx.1.trans hy.1.symm, hx.2.trans hy.2.symm⟩

end Chronicle.Decimal
