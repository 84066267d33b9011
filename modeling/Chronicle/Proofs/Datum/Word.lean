import Chronicle.Datum.Json
import Chronicle.Proofs.Text.Numeral
import Mathlib.Data.List.TakeWhile

/-!
# Numbers among the words

The word of a printed whole number is read as this number.  A word with a point or an exponent is
read as the decimal that its digits and its exponent give.
-/

namespace Chronicle.Datum

open Text.Numeral

/-- The part of a word from its exponent on. -/
inductive IsExponent : List Char → Int → Prop
  | absent : IsExponent [] 0
  | minus {ds : List Char} (hds : ∀ c ∈ ds, c.isDigit) (hne : ds ≠ []) :
    IsExponent ('e' :: '-' :: ds) (-Nat.ofDigitChars 10 ds 0)
  | plus {ds : List Char} (hds : ∀ c ∈ ds, c.isDigit) (hne : ds ≠ []) :
    IsExponent ('e' :: '+' :: ds) (Nat.ofDigitChars 10 ds 0)

/-- Behind the point stands a digit at least, or the point is left out. -/
def point (fraction : List Char) : List Char := if fraction = [] then [] else '.' :: fraction

variable {whole fraction exponent : List Char} {power : Int}

theorem point_cases (hfraction : ∀ c ∈ fraction, c.isDigit) :
    ∀ c ∈ point fraction, c = '.' ∨ c.isDigit := by
  intro c hc
  unfold point at hc
  split_ifs at hc
  · simp at hc
  · exact (List.mem_cons.1 hc).imp_right (hfraction c)

/-- A word falls apart into its mantissa and its exponent. -/
theorem span_mantissa (hwhole : ∀ c ∈ whole, c.isDigit) (hfraction : ∀ c ∈ fraction, c.isDigit)
    (hexponent : IsExponent exponent power) :
    (whole ++ point fraction ++ exponent).takeWhile (fun c => c ≠ 'e' && c ≠ 'E') =
        whole ++ point fraction ∧
      (whole ++ point fraction ++ exponent).dropWhile (fun c => c ≠ 'e' && c ≠ 'E') = exponent := by
  have hmantissa : ∀ c ∈ whole ++ point fraction, (c ≠ 'e' && c ≠ 'E') := by
    intro c hc
    have hdigit : c = '.' ∨ c.isDigit := by
      rcases List.mem_append.1 hc with h | h
      · exact .inr (hwhole c h)
      · exact point_cases hfraction c h
    rcases hdigit with rfl | hdigit
    · decide
    · have hlower : c ≠ 'e' := isDigit_ne hdigit rfl
      have hupper : c ≠ 'E' := isDigit_ne hdigit rfl
      simp [hlower, hupper]
  rw [List.takeWhile_append_of_pos hmantissa, List.dropWhile_append_of_pos hmantissa]
  cases hexponent <;> simp

/-- A mantissa falls apart at its point. -/
theorem span_point (fraction : List Char) (hwhole : ∀ c ∈ whole, c.isDigit) :
    (whole ++ point fraction).takeWhile (· ≠ '.') = whole ∧
      (whole ++ point fraction).dropWhile (· ≠ '.') = point fraction := by
  have hpoint : ∀ c ∈ whole, decide (c ≠ '.') :=
    fun c hc => decide_eq_true (isDigit_ne (hwhole c hc) rfl)
  rw [List.takeWhile_append_of_pos hpoint, List.dropWhile_append_of_pos hpoint]
  unfold point
  split_ifs <;> simp

theorem unsignedOfWord?_decimal (negative : Bool) (hwhole : ∀ c ∈ whole, c.isDigit)
    (hnatural : (natural? whole).isSome) (hfraction : ∀ c ∈ fraction, c.isDigit)
    (hexponent : IsExponent exponent power) (hne : fraction ≠ [] ∨ exponent ≠ []) :
    unsignedOfWord? negative (whole ++ point fraction ++ exponent) =
      some (.decimal ⟨negative, Nat.ofDigitChars 10 (whole ++ fraction) 0,
        power - fraction.length⟩) := by
  obtain ⟨htake, hdrop⟩ := span_mantissa hwhole hfraction hexponent
  obtain ⟨hbefore, hbehind⟩ := span_point fraction hwhole
  obtain ⟨n, hn⟩ := Option.isSome_iff_exists.1 hnatural
  have hread : digits? (whole ++ fraction) = some (Nat.ofDigitChars 10 (whole ++ fraction) 0) := by
    apply digits?_of_isDigit (isDigit_of_mem_append hwhole hfraction)
    intro h
    obtain ⟨rfl, -⟩ := List.append_eq_nil_iff.1 h
    simp [natural?, digits?] at hn
  have hrest : (point fraction).drop 1 = fraction := by
    unfold point
    split_ifs with h
    · rw [h]; rfl
    · rfl
  have hpoint : point fraction ≠ ['.'] := by
    unfold point
    split_ifs with h
    · simp
    · simpa using h
  have hsome : ((point fraction).isEmpty && exponent.isEmpty) = false := by
    rcases hne with h | h <;> simp [point, h]
  simp only [unsignedOfWord?, htake, hdrop, hbefore, hbehind, hn, hrest, hread, hsome]
  cases hexponent with
  | absent => simp [hpoint]
  | minus hds hds' => simp [hpoint, digits?_of_isDigit hds hds']
  | plus hds hds' => simp [hpoint, digits?_of_isDigit hds hds']

theorem unsignedOfWord?_toDigits (negative : Bool) (n : Nat) :
    unsignedOfWord? negative (Nat.toDigits 10 n) =
      some (.integer (if negative then -n else n)) := by
  have hdigits := isDigit_of_mem_toDigits n
  have hnone : ∀ c ∈ ([] : List Char), c.isDigit := by simp
  obtain ⟨htake, hdrop⟩ := span_mantissa hdigits hnone .absent
  obtain ⟨hbefore, hbehind⟩ := span_point [] hdigits
  simp only [point, if_true, List.append_nil] at htake hdrop hbefore hbehind
  simp only [unsignedOfWord?, htake, hdrop, hbefore, hbehind, natural?_toDigits]
  rfl

theorem ofList_ne_word {c d : Char} (hne : c ≠ d) (cs ds : List Char) :
    String.ofList (c :: cs) ≠ String.ofList (d :: ds) := by
  intro h
  have hlist := congrArg String.toList h
  rw [String.toList_ofList, String.toList_ofList] at hlist
  exact hne (List.cons.inj hlist).1

/-- Only the three words of letters are none of a number. -/
theorem ofWord?_cons {c : Char} (hnull : c ≠ 'n') (htrue : c ≠ 't') (hfalse : c ≠ 'f')
    (cs : List Char) : ofWord? (c :: cs) =
      if c = '-' then unsignedOfWord? true cs else unsignedOfWord? false (c :: cs) := by
  unfold ofWord?
  split
  next h => exact absurd h (ofList_ne_word hnull cs _)
  next h => exact absurd h (ofList_ne_word htrue cs _)
  next h => exact absurd h (ofList_ne_word hfalse cs _)
  next h _ _ _ =>
    obtain ⟨rfl, rfl⟩ := List.cons.inj h
    rw [if_pos rfl]
  next h => rw [if_neg fun hc => h cs (by rw [hc])]

theorem ofWord?_minus (cs : List Char) : ofWord? ('-' :: cs) = unsignedOfWord? true cs :=
  ofWord?_cons (by decide) (by decide) (by decide) cs

theorem ofWord?_digit {c : Char} (hc : c.isDigit) (cs : List Char) :
    ofWord? (c :: cs) = unsignedOfWord? false (c :: cs) := by
  rw [ofWord?_cons (isDigit_ne hc rfl) (isDigit_ne hc rfl) (isDigit_ne hc rfl),
    if_neg (isDigit_ne hc rfl)]

theorem ofWord?_toString (z : Int) : ofWord? (toString z).toList = some (.integer z) := by
  rw [Spelling.toList_toString]
  split_ifs with hz
  · rw [List.singleton_append, ofWord?_minus, unsignedOfWord?_toDigits, if_pos rfl]
    congr
    omega
  · rw [List.nil_append]
    obtain ⟨c, cs, h⟩ := List.exists_cons_of_ne_nil (Nat.toDigits_ne_nil (n := z.natAbs) (b := 10))
    have hc : c.isDigit := isDigit_of_mem_toDigits _ c (h ▸ List.mem_cons_self)
    rw [h, ofWord?_digit hc, ← h, unsignedOfWord?_toDigits, if_neg Bool.false_ne_true]
    congr
    omega

end Chronicle.Datum
