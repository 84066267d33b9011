import Chronicle.Text.Numeral
import Mathlib.Data.List.Basic
import Mathlib.Data.List.TakeWhile

/-!
# Whole numbers are read back

A number is read from each of its loose spellings, and so from the one in which it is printed, as
long as it has no more digits than `digitLimit`.
-/

namespace Chronicle.Text.Numeral

/-! ### Digits -/

theorem isDigit_iff (c : Char) : c.isDigit ↔ '0' ≤ c ∧ c ≤ '9' := by
  rw [Char.isDigit, Bool.and_eq_true, decide_eq_true_eq, decide_eq_true_eq]
  rfl

theorem digit?_of_isDigit {c : Char} (hc : c.isDigit) : digit? c = some (c.toNat - '0'.toNat) :=
  if_pos ((isDigit_iff c).1 hc)

theorem isSome_digit? (c : Char) : (digit? c).isSome ↔ c.isDigit := by
  rw [isDigit_iff, digit?]
  split <;> simp [*]

theorem isDigit_ne {c d : Char} (hc : c.isDigit) (hd : d.isDigit = false) : c ≠ d := by
  rintro rfl
  rw [hc] at hd
  exact Bool.noConfusion hd

theorem isBlank_eq_false {c : Char} (hc : c.isDigit ∨ c ∈ ['_', '.', '+', '-']) :
    isBlank c = false := by
  rcases hc with hc | hc
  · have hc' : 48 ≤ c.toNat ∧ c.toNat ≤ 57 := (isDigit_iff c).1 hc
    simp [isBlank]
    omega
  · simp only [List.mem_cons, List.not_mem_nil, or_false] at hc
    rcases hc with rfl | rfl | rfl | rfl <;> rfl

theorem digitsFrom_of_isDigit {cs : List Char} (hcs : ∀ c ∈ cs, c.isDigit) (n : Nat) :
    digitsFrom n cs = some (Nat.ofDigitChars 10 cs n) := by
  induction cs generalizing n with
  | nil => rfl
  | cons c cs ih =>
    rw [digitsFrom, digit?_of_isDigit (hcs c List.mem_cons_self), Nat.ofDigitChars_cons]
    exact ih (fun d hd => hcs d (List.mem_cons_of_mem c hd)) _

theorem digits?_of_isDigit {cs : List Char} (hcs : ∀ c ∈ cs, c.isDigit) (hne : cs ≠ []) :
    digits? cs = some (Nat.ofDigitChars 10 cs 0) := by
  cases cs with
  | nil => exact absurd rfl hne
  | cons c cs => exact digitsFrom_of_isDigit hcs 0

theorem isDigit_of_mem_toDigits (n : Nat) : ∀ c ∈ Nat.toDigits 10 n, c.isDigit :=
  fun _ hc => Nat.isDigit_of_mem_toDigits (by decide) (by decide) hc

theorem isDigit_of_mem_append {cs ds : List Char} (hcs : ∀ c ∈ cs, c.isDigit)
    (hds : ∀ c ∈ ds, c.isDigit) : ∀ c ∈ cs ++ ds, c.isDigit := by
  intro c hc
  rcases List.mem_append.1 hc with h | h
  · exact hcs c h
  · exact hds c h

theorem isDigit_of_mem_zeros (n : Nat) : ∀ c ∈ List.replicate n '0', c.isDigit := by
  intro c hc
  rw [List.eq_of_mem_replicate hc]
  rfl

theorem digits?_toDigits (n : Nat) : digits? (Nat.toDigits 10 n) = some n := by
  rw [digits?_of_isDigit (isDigit_of_mem_toDigits n) Nat.toDigits_ne_nil,
    Nat.ofDigitChars_ten_toDigits]

theorem head?_toDigits {n : Nat} (hn : 0 < n) : (Nat.toDigits 10 n).head? ≠ some '0' := by
  induction n using Nat.strongRecOn with
  | ind n ih =>
    rw [Nat.toDigits_eq_if (by decide)]
    split_ifs with hsmall
    · simp; omega
    · rw [List.head?_append_of_ne_nil _ Nat.toDigits_ne_nil]
      exact ih (n / 10) (by omega) (by omega)

theorem natural?_toDigits (n : Nat) : natural? (Nat.toDigits 10 n) = some n := by
  rw [← digits?_toDigits n, natural?.eq_def]
  split
  next c cs h =>
    obtain rfl | hn := Nat.eq_zero_or_pos n
    · simp at h
    · exact absurd (congrArg List.head? h) (head?_toDigits hn)
  next => rfl

theorem not_minus_cons_toDigits (n : Nat) (cs : List Char) : Nat.toDigits 10 n ≠ '-' :: cs := by
  intro h
  have hminus : '-'.isDigit := isDigit_of_mem_toDigits n '-' (h ▸ List.mem_cons_self)
  exact isDigit_ne hminus rfl rfl

theorem dropMinus_toDigits (n : Nat) : dropMinus (Nat.toDigits 10 n) = Nat.toDigits 10 n := by
  rw [dropMinus.eq_def]
  split
  next cs h => exact absurd h (not_minus_cons_toDigits n cs)
  next => rfl

theorem whole?_toDigits (n : Nat) : whole? (Nat.toDigits 10 n) = some (n : Int) := by
  rw [whole?.eq_def]
  split
  next cs h => exact absurd h (not_minus_cons_toDigits n cs)
  next => rw [natural?_toDigits]; rfl

/-! ### Loose spellings -/

inductive Sign
  | none
  | plus
  | minus

def Sign.chars : Sign → List Char
  | none => []
  | plus => ['+']
  | minus => ['-']

/-- What the strict form keeps of the sign. -/
def Sign.strict : Sign → List Char
  | none => []
  | plus => []
  | minus => ['-']

def Sign.apply : Sign → Nat → Int
  | none, n => n
  | plus, n => n
  | minus, n => -n

/-- A loose way to write a number: its digits with underscores between them, zeros and underscores
in front, a point with so many zeros behind it, and blanks around. -/
structure Spelling (n : Nat) where
  before : List Char
  sign : Sign
  zeros : List Char
  digits : List Char
  places : Nat
  after : List Char
  isBlank_before : ∀ c ∈ before, isBlank c
  head?_zeros : ∀ c ∈ zeros.head?, c = '0'
  eq_of_mem_zeros : ∀ c ∈ zeros, c = '0' ∨ c = '_'
  separates_digits : separates '_' digits
  filter_digits : digits.filter (· ≠ '_') = Nat.toDigits 10 n
  isBlank_after : ∀ c ∈ after, isBlank c

namespace Spelling

variable {n : Nat} (w : Spelling n)

def fraction : List Char :=
  if w.places = 0 then [] else '.' :: List.replicate w.places '0'

def unsigned : List Char := w.zeros ++ w.digits ++ w.fraction

def text : String := String.ofList (w.before ++ (w.sign.chars ++ w.unsigned) ++ w.after)

def value : Int := w.sign.apply n

theorem eq_of_mem_digits {c : Char} (hc : c ∈ w.digits) : c = '_' ∨ c.isDigit := by
  by_cases h : c = '_'
  · exact .inl h
  · refine .inr (isDigit_of_mem_toDigits n c ?_)
    rw [← w.filter_digits]
    exact List.mem_filter.2 ⟨hc, by simpa using h⟩

/-- The digits start with one that is not zero, unless zero is all that they are. -/
theorem digits_cases :
    (∃ c cs, w.digits = c :: cs ∧ c.isDigit ∧ c ≠ '0') ∨ w.digits = ['0'] := by
  have hseparates := w.separates_digits
  have hfilter := w.filter_digits
  cases hdigits : w.digits with
  | nil => simp [hdigits, separates] at hseparates
  | cons c cs =>
    simp only [hdigits, separates, ne_eq, not_true_eq_false, decide_false, Bool.or_false,
      Bool.and_eq_true, decide_eq_true_eq] at hseparates
    rw [hdigits, List.filter_cons_of_pos (by simpa using hseparates.1)] at hfilter
    have hdigit : c.isDigit := isDigit_of_mem_toDigits n c (hfilter ▸ List.mem_cons_self)
    obtain rfl | hn := Nat.eq_zero_or_pos n
    · right
      simp only [Nat.toDigits_zero, List.cons.injEq, List.filter_eq_nil_iff] at hfilter
      obtain ⟨rfl, hcs⟩ := hfilter
      -- Two underscores side by side and one at the end are both ruled out.
      cases cs with
      | nil => rfl
      | cons d ds => cases ds <;> simp_all [separates]
    · exact .inl ⟨c, cs, rfl, hdigit, fun hc => head?_toDigits hn (by rw [← hfilter, hc]; rfl)⟩

theorem afterZeros_fraction (last : Char) :
    afterZeros last w.fraction = some (last :: w.fraction) := by
  unfold fraction
  split
  · rfl
  · simp [afterZeros, digit?]

theorem afterZeros_digits (last : Char) :
    afterZeros last (w.digits ++ w.fraction) = some (w.digits ++ w.fraction) := by
  obtain ⟨c, cs, hdigits, hc, hzero⟩ | hdigits := w.digits_cases
  · have hunderscore : c ≠ '_' := isDigit_ne hc rfl
    simp [hdigits, afterZeros, hzero, hunderscore, (isSome_digit? c).2 hc]
  · rw [hdigits, List.singleton_append, afterZeros, if_pos (by decide), w.afterZeros_fraction]

theorem afterZeros_append {zs : List Char} (hzs : ∀ c ∈ zs, c = '0' ∨ c = '_') (last : Char) :
    afterZeros last (zs ++ (w.digits ++ w.fraction)) = some (w.digits ++ w.fraction) := by
  induction zs generalizing last with
  | nil => exact w.afterZeros_digits last
  | cons z zs ih =>
    rw [List.cons_append, afterZeros, if_pos (by simpa using hzs z List.mem_cons_self)]
    exact ih (fun c hc => hzs c (List.mem_cons_of_mem z hc)) z

theorem dropZeros_unsigned : dropZeros w.unsigned = some (w.digits ++ w.fraction) := by
  have hhead := w.head?_zeros
  have hzeros := w.eq_of_mem_zeros
  rw [unsigned, List.append_assoc]
  cases hz : w.zeros with
  | nil =>
    obtain ⟨c, cs, hdigits, hc, hzero⟩ | hdigits := w.digits_cases
    · simp [hdigits, dropZeros, hzero, digit?_of_isDigit hc]
    · simp [hdigits, dropZeros, w.afterZeros_fraction]
  | cons z zs =>
    obtain rfl : z = '0' := hhead z (by rw [hz]; rfl)
    rw [List.cons_append, dropZeros, if_pos rfl]
    exact w.afterZeros_append (fun c hc => hzeros c (hz ▸ List.mem_cons_of_mem _ hc)) _

theorem dropZeroFraction_digits : dropZeroFraction (w.digits ++ w.fraction) = w.digits := by
  have hpoint : ∀ c ∈ w.digits, decide (c ≠ '.') := by
    intro c hc
    rw [decide_eq_true_eq]
    rcases w.eq_of_mem_digits hc with rfl | h
    · decide
    · exact isDigit_ne h rfl
  rw [dropZeroFraction, List.dropWhile_append_of_pos hpoint, List.takeWhile_append_of_pos hpoint]
  unfold fraction
  split_ifs with hplaces <;> simp_all

theorem dropUnderscores_digits : dropUnderscores w.digits = Nat.toDigits 10 n := by
  rw [dropUnderscores, if_pos w.separates_digits, w.filter_digits]

theorem unsigned?_unsigned : unsigned? w.unsigned = some (Nat.toDigits 10 n) := by
  rw [unsigned?, w.dropZeros_unsigned, Option.map_some, w.dropZeroFraction_digits,
    w.dropUnderscores_digits]

theorem exists_unsigned : ∃ c cs, w.unsigned = c :: cs ∧ c.isDigit := by
  have hhead := w.head?_zeros
  cases hz : w.zeros with
  | nil =>
    obtain ⟨c, cs, hdigits, hc, -⟩ | hdigits := w.digits_cases
    · exact ⟨c, _, by rw [unsigned, hz, hdigits]; rfl, hc⟩
    · exact ⟨'0', _, by rw [unsigned, hz, hdigits]; rfl, rfl⟩
  | cons z zs =>
    obtain rfl : z = '0' := hhead z (by rw [hz]; rfl)
    exact ⟨'0', _, by rw [unsigned, hz]; rfl, rfl⟩

theorem isBlank_of_mem : ∀ c ∈ w.sign.chars ++ w.unsigned, isBlank c = false := by
  intro c hc
  apply isBlank_eq_false
  simp only [unsigned, fraction, List.mem_append] at hc
  rcases hc with hsign | (hzeros | hdigits) | hfraction
  · cases h : w.sign <;> simp_all [Sign.chars]
  · rcases w.eq_of_mem_zeros c hzeros with rfl | rfl <;> decide
  · rcases w.eq_of_mem_digits hdigits with rfl | h
    · decide
    · exact .inl h
  · split_ifs at hfraction
    · simp at hfraction
    · rcases List.mem_cons.1 hfraction with rfl | h
      · decide
      · rw [List.eq_of_mem_replicate h]
        decide

theorem dropWhile_isBlank {cs : List Char} (hcs : ∀ c ∈ cs, isBlank c = false) :
    cs.dropWhile isBlank = cs := by
  cases cs with
  | nil => rfl
  | cons c cs => exact List.dropWhile_cons_of_neg (by simp [hcs c List.mem_cons_self])

theorem trim_append {before cs after : List Char} (hbefore : ∀ c ∈ before, isBlank c)
    (hcs : ∀ c ∈ cs, isBlank c = false) (hne : cs ≠ []) (hafter : ∀ c ∈ after, isBlank c) :
    trim (before ++ cs ++ after) = cs := by
  obtain ⟨c, ds, rfl⟩ := List.exists_cons_of_ne_nil hne
  have hfront : isBlank c = false := hcs c List.mem_cons_self
  have hback : ∀ d ∈ after.reverse, isBlank d := fun d hd => hafter d (List.mem_reverse.1 hd)
  have hreverse : ∀ d ∈ (c :: ds).reverse, isBlank d = false :=
    fun d hd => hcs d (List.mem_reverse.1 hd)
  rw [trim, List.append_assoc, List.dropWhile_append_of_pos hbefore, List.cons_append,
    List.dropWhile_cons_of_neg (by simp [hfront]), ← List.cons_append, List.reverse_append,
    List.dropWhile_append_of_pos hback, dropWhile_isBlank hreverse, List.reverse_reverse]

theorem strict?_text : strict? w.text.toList = some (w.sign.strict ++ Nat.toDigits 10 n) := by
  obtain ⟨c, cs, hunsigned, hc⟩ := w.exists_unsigned
  have hread := w.unsigned?_unsigned
  have htrim := trim_append w.isBlank_before w.isBlank_of_mem (by simp [hunsigned]) w.isBlank_after
  rw [text, String.toList_ofList, strict?, htrim]
  cases w.sign with
  | none =>
    have hplus : c ≠ '+' := isDigit_ne hc rfl
    have hminus : c ≠ '-' := isDigit_ne hc rfl
    simp [Sign.chars, Sign.strict, hunsigned, hplus, hminus] at hread ⊢
    exact hread
  | plus => simpa [Sign.chars, Sign.strict] using hread
  | minus => simpa [Sign.chars, Sign.strict] using hread

/-- A number that has no more digits than the limit is read from its spelling, and no other. -/
theorem loose?_text : loose? w.text =
    if (Nat.toDigits 10 n).length ≤ digitLimit then some w.value else none := by
  rw [loose?, w.strict?_text, Option.bind_eq_bind, Option.bind_some, value]
  cases w.sign with
  | none => rw [Sign.strict, List.nil_append, dropMinus_toDigits, whole?_toDigits]; rfl
  | plus => rw [Sign.strict, List.nil_append, dropMinus_toDigits, whole?_toDigits]; rfl
  | minus => rw [Sign.strict, List.singleton_append, dropMinus, whole?, natural?_toDigits]; rfl

/-! ### The printed spelling -/

theorem separates_of_notMem {last : Char} {cs : List Char} (hcs : '_' ∉ cs)
    (hne : cs ≠ [] ∨ last ≠ '_') : separates last cs := by
  induction cs generalizing last with
  | nil => simpa [separates] using hne
  | cons c cs ih =>
    obtain ⟨hc, hcs⟩ := List.ne_and_not_mem_of_not_mem_cons hcs
    simp [separates, hc.symm, ih hcs (.inr hc.symm)]

/-- The spelling in which a number is printed. -/
def printed (z : Int) : Spelling z.natAbs where
  before := []
  sign := if z < 0 then .minus else .none
  zeros := []
  digits := Nat.toDigits 10 z.natAbs
  places := 0
  after := []
  isBlank_before := by simp
  head?_zeros := by simp
  eq_of_mem_zeros := by simp
  separates_digits := separates_of_notMem Nat.underscore_not_in_toDigits (.inl Nat.toDigits_ne_nil)
  filter_digits := List.filter_eq_self.2 fun c hc => by
    rw [decide_eq_true_eq]
    rintro rfl
    exact Nat.underscore_not_in_toDigits hc
  isBlank_after := by simp

theorem toList_toString (z : Int) : (toString z).toList =
    (if z < 0 then ['-'] else []) ++ Nat.toDigits 10 z.natAbs := by
  rw [Int.toString_eq_repr, Int.repr_eq_if]
  by_cases hz : z < 0
  · rw [if_neg (by omega), if_pos hz, String.toList_append, Nat.toList_repr,
      show (-z).toNat = z.natAbs by omega]
    rfl
  · rw [if_pos (by omega), if_neg hz, Nat.toList_repr, show z.toNat = z.natAbs by omega]
    rfl

theorem text_printed (z : Int) : (printed z).text = toString z := by
  apply String.toList_injective
  rw [toList_toString, text, String.toList_ofList]
  by_cases hz : z < 0 <;> simp [printed, unsigned, fraction, Sign.chars, hz]

theorem value_printed (z : Int) : (printed z).value = z := by
  by_cases hz : z < 0 <;> simp only [value, printed, Sign.apply, hz, if_true, if_false] <;> omega

end Spelling

theorem loose?_toString (z : Int) : loose? (toString z) =
    if (Nat.toDigits 10 z.natAbs).length ≤ digitLimit then some z else none := by
  rw [← Spelling.text_printed, Spelling.loose?_text, Spelling.value_printed]

theorem dropMinus_toString (z : Int) :
    dropMinus (toString z).toList = Nat.toDigits 10 z.natAbs := by
  rw [Spelling.toList_toString]
  split_ifs
  · rfl
  · exact dropMinus_toDigits z.natAbs

/-- A printed number that is not read is reported as too long. -/
theorem isTooLong_toString (z : Int) :
    isTooLong (toString z) ↔ loose? (toString z) = none := by
  have hdigits : ∀ c ∈ Nat.toDigits 10 z.natAbs, (digit? c).isSome :=
    fun c hc => (isSome_digit? c).2 (isDigit_of_mem_toDigits _ c hc)
  rw [loose?_toString, isTooLong, leadingDigits, dropMinus_toString,
    List.takeWhile_eq_self_iff.2 hdigits]
  obtain hz | hz := Nat.eq_zero_or_pos z.natAbs
  · simp [hz, digitLimit]
  · simp [head?_toDigits hz]

end Chronicle.Text.Numeral
